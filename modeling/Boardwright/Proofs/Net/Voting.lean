import Boardwright.Net.Name
import Boardwright.Proofs.Net.Connectivity
import Mathlib.Algebra.GroupWithZero.Nat
import Mathlib.Algebra.Order.BigOperators.Group.List
import Mathlib.Algebra.Order.Group.Nat

/-!
# The name that the signals of a net vote for

The votes for a name are read off the library: a name has the sum of the weights of the signals that
bear it, and the name that is taken has the greatest sum. So the name of a net depends on nothing but
the tree of its root, and is found if the net stands in this tree.

The weight of a signal is the one that the path to it gives it: only the root itself has no parent,
so a signal that is declared on the root weighs no more than one that is deeper.
-/

namespace Boardwright

open Work Library List Table

variable {nets : List (List Address)}

namespace Net

variable {files : Files} {searched : List Route} {lib lib' : Library} {a e r root : Address}
  {net : List Address} {b : String} {t : Table String Nat} {q : List String}

/-! ### The votes as the library has them -/

def weightIn (lib : Library) (a : Address) : Nat :=
  if a.parent.isNone then 10 else if a.parents.any (lib.made [.interface]) then 5 else 2

def voteIn (lib : Library) (t : Table String Nat) (a : Address) : Table String Nat :=
  if lib.made [.signal] a then t.set a.name ((t.get? a.name).getD 0 + weightIn lib a) else t

def baseNameIn (lib : Library) (net : List Address) : String :=
  (winner? (net.foldl (voteIn lib) ∅)).getD "net"

def namedIn (lib : Library) (nets : List (List Address)) : Table String (List Address) :=
  Table.ofList ((tellApart [] (nets.map (baseNameIn lib))).zip nets)

theorem reads_made (bs : List Builtin) (a : Address) :
    Keeps (· = lib) (· = lib.made bs a) (isAny bs a) :=
  (reads_isAny bs a).imp fun c ⟨i, hi, hic⟩ => by simp [made, hi, hic]

theorem reads_weight (a : Address) : Keeps (· = lib) (· = weightIn lib a) (weight a) := by
  unfold weight weightIn
  split
  · exact .pure rfl
  · refine (Keeps.anyM fun p _ => reads_made _ p).bind fun c hc => ?_
    rw [← hc]
    split <;> exact .pure rfl

theorem reads_votes (t : Table String Nat) (net : List Address) :
    Keeps (· = lib) (· = net.foldl (voteIn lib) t) (votes t net) := by
  induction net generalizing t with
  | nil => exact .pure rfl
  | cons a net ih =>
    rw [foldl_cons, voteIn]
    refine (reads_made _ a).bind fun c hc => ?_
    rw [← hc]
    split
    · refine (reads_weight a).bind fun n hn => ?_
      rw [hn]
      exact ih _
    · exact ih t

theorem reads_baseName (net : List Address) :
    Keeps (· = lib) (· = baseNameIn lib net) (baseName net) :=
  (reads_votes ∅ net).bind fun t ht => .pure (by rw [ht]; rfl)

theorem reads_named (nets : List (List Address)) :
    Keeps (· = lib) (· = namedIn lib nets) (named nets) := by
  refine (Keeps.mapM fun net _ => reads_baseName net).bind fun bases hbases => .pure ?_
  have hmap := map_eq_map_of_forall₂ (f := baseNameIn lib) (g := id) hbases fun _ _ h => h.symm
  rw [namedIn, hmap, map_id]

section Within

variable (hlib : Reached files searched lib) (hr : r.IsRoot) (hc : lib.instances.contains r)

include hlib hr hc

theorem answers_isAny (ha : lib.Within r a) (bs : List Builtin) : Answers lib (isAny bs a) := by
  have hwhole := hlib.whole hr (by rwa [← contains_eq_isSome])
  obtain ⟨q, hq, rfl⟩ := within_iff_leads.1 ha
  obtain ⟨i, hi⟩ := hwhole.exists_instance hq
  exact ⟨i.isAny bs, isAny_eq_ok.2 ⟨⟨i, hi, rfl⟩, rfl⟩⟩

/-- The parents of an instance stand in its tree. -/
theorem answers_weight (ha : lib.Within r a) : Answers lib (weight a) := by
  have hwhole := hlib.whole hr (by rwa [← contains_eq_isSome])
  obtain ⟨q, hq, rfl⟩ := within_iff_leads.1 ha
  have hparents : ∀ p ∈ (r.addInstances q).parents, lib.Within r p := by
    intro p hp
    obtain ⟨q', q'', rfl, -, rfl⟩ := hr.exists_of_mem_parents (hwhole q hq).1 hp
    exact within_iff_leads.2 ⟨q', hq.of_append, rfl⟩
  unfold weight
  split
  · exact .pure 10
  · refine (Answers.anyM fun p hp => answers_isAny hlib hr hc (hparents p hp) _).bind fun c => ?_
    split
    · exact .pure 5
    · exact .pure 2

theorem answers_votes (hnet : ∀ a ∈ net, lib.Within r a) (t : Table String Nat) :
    Answers lib (votes t net) := by
  induction net generalizing t with
  | nil => exact .pure t
  | cons a net ih =>
    rw [forall_mem_cons] at hnet
    refine (answers_isAny hlib hr hc hnet.1 _).bind fun c => ?_
    split
    · exact (answers_weight hlib hr hc hnet.1).bind fun n => ih hnet.2 _
    · exact ih hnet.2 t

theorem outcome_baseName (hnet : ∀ a ∈ net, lib.Within r a) :
    (baseName net).outcome lib = (.ok (baseNameIn lib net), lib) := by
  obtain ⟨name, hname⟩ : Answers lib (baseName net) :=
    (answers_votes hlib hr hc hnet ∅).bind fun t => .pure _
  rw [hname, (reads_baseName net).result rfl hname]

theorem outcome_named (hnets : ∀ net ∈ nets, ∀ a ∈ net, lib.Within r a) :
    (named nets).outcome lib = (.ok (namedIn lib nets), lib) := by
  unfold named
  rw [outcome_bind_ok _ (outcome_mapM fun net hnet => outcome_baseName hlib hr hc (hnets net hnet))]
  rfl

end Within

/-- Libraries that share the tree in which nets stand give them the same names. -/
theorem namedIn_congr (h : Shares files searched e lib lib')
    (hnets : ∀ net ∈ nets, ∀ a ∈ net, e.Tree a) : namedIn lib nets = namedIn lib' nets := by
  have hmade : ∀ {a}, e.Tree a → ∀ bs, lib.made bs a = lib'.made bs a := by
    intro a ha bs
    rw [made, made, h.agree a ha]
  have hweight : ∀ a, e.Tree a → weightIn lib a = weightIn lib' a := by
    rintro _ ⟨hroot, q, hq, rfl⟩
    have hparents : (e.addInstances q).parents.any (lib.made [.interface]) =
        (e.addInstances q).parents.any (lib'.made [.interface]) := by
      rw [Bool.eq_iff_iff, any_eq_true, any_eq_true]
      refine exists_congr fun p => and_congr_right fun hp => ?_
      obtain ⟨q', q'', rfl, -, rfl⟩ := hroot.exists_of_mem_parents hq hp
      rw [hmade ⟨hroot, q', (areNames_append.1 hq).1, rfl⟩]
    rw [weightIn, weightIn, hparents]
  have hbase : ∀ net ∈ nets, baseNameIn lib net = baseNameIn lib' net := by
    intro net hnet
    have hvotes : net.foldl (voteIn lib) ∅ = net.foldl (voteIn lib') ∅ := by
      refine foldl_ext _ _ _ fun t a ha => ?_
      have hnode := hnets net hnet a ha
      rw [voteIn, voteIn, hmade hnode, hweight a hnode]
    rw [baseNameIn, baseNameIn, hvotes]
  rw [namedIn, namedIn, map_congr_left hbase]

/-! ### The name that is taken -/

theorem foldl_greater (es : List (String × Nat)) (e : String × Nat) :
    es.foldl (fun best e => if best.2 < e.2 then e else best) e ∈ e :: es ∧
      ∀ d ∈ e :: es, d.2 ≤ (es.foldl (fun best e => if best.2 < e.2 then e else best) e).2 := by
  induction es generalizing e with
  | nil => simp
  | cons e' es ih =>
    rw [foldl_cons]
    obtain ⟨hmem, hle⟩ := ih (if e.2 < e'.2 then e' else e)
    rw [forall_mem_cons] at hle
    refine ⟨?_, ?_⟩
    · rcases mem_cons.1 hmem with hbest | hbest
      · rw [hbest]
        split <;> simp
      · exact mem_cons_of_mem e (mem_cons_of_mem e' hbest)
    · rw [forall_mem_cons, forall_mem_cons]
      refine ⟨Nat.le_trans ?_ hle.1, Nat.le_trans ?_ hle.1, hle.2⟩ <;> split <;> omega

theorem le_of_winner? (hkeys : t.keys.Nodup) (h : winner? t = some b) :
    b ∈ t.keys ∧ ∀ c, (t.get? c).getD 0 ≤ (t.get? b).getD 0 := by
  unfold winner? at h
  split at h
  · cases h
  · next e es hes =>
      cases h
      obtain ⟨hmem, hle⟩ := foldl_greater es e
      rw [← hes] at hmem hle
      refine ⟨mem_map_of_mem hmem, fun c => ?_⟩
      rw [(get?_eq_some_iff hkeys).2 hmem]
      cases hc : t.get? c with
      | none => exact Nat.zero_le _
      | some n => exact hle _ (mem_entries_of_get? hc)

/-- What the signals on a net give to a name. -/
def tallyIn (lib : Library) (net : List Address) (b : String) : Nat :=
  ((net.filter fun a => lib.made [.signal] a && a.name == b).map (weightIn lib)).sum

theorem keys_foldl_voteIn (t : Table String Nat) :
    (t.keys.Nodup → (net.foldl (voteIn lib) t).keys.Nodup) ∧
      (b ∈ (net.foldl (voteIn lib) t).keys ↔
        b ∈ t.keys ∨ ∃ a ∈ net, lib.made [.signal] a ∧ a.name = b) := by
  induction net generalizing t with
  | nil => simp
  | cons a net ih =>
    rw [foldl_cons, (ih _).2, exists_mem_cons_iff]
    unfold voteIn
    split
    · next hsignal =>
        refine ⟨fun hkeys => (ih _).1 (keys_nodup_set _ _ hkeys), ?_⟩
        rw [mem_keys_set]
        grind
    · next hsignal =>
        refine ⟨(ih t).1, ?_⟩
        grind

theorem get?_foldl_voteIn (t : Table String Nat) (b : String) :
    ((net.foldl (voteIn lib) t).get? b).getD 0 = (t.get? b).getD 0 + tallyIn lib net b := by
  induction net generalizing t with
  | nil => rfl
  | cons a net ih =>
    rw [foldl_cons, ih, voteIn, tallyIn, tallyIn, filter_cons]
    by_cases hsignal : lib.made [.signal] a
    · by_cases hname : a.name = b
      · simp [hsignal, hname, Nat.add_assoc]
      · simp [hsignal, hname, get?_set_of_ne _ _ (Ne.symm hname)]
    · simp [hsignal]

/-- The name of a net has the most votes and is the name of a signal on it, if there is one. -/
theorem baseNameIn_greatest (lib : Library) (net : List Address) :
    (∀ c, tallyIn lib net c ≤ tallyIn lib net (baseNameIn lib net)) ∧
      ((∃ a ∈ net, lib.made [.signal] a ∧ a.name = baseNameIn lib net) ∨
        (∀ a ∈ net, ¬lib.made [.signal] a) ∧ baseNameIn lib net = "net") := by
  have htally : ∀ c, tallyIn lib net c = ((net.foldl (voteIn lib) ∅).get? c).getD 0 := by
    intro c
    simp [get?_foldl_voteIn]
  have hmem : ∀ c, c ∈ (net.foldl (voteIn lib) ∅).keys ↔
      ∃ a ∈ net, lib.made [.signal] a ∧ a.name = c := by
    intro c
    simp [(keys_foldl_voteIn ∅).2]
  simp only [htally]
  unfold baseNameIn
  cases hwinner : winner? (net.foldl (voteIn lib) ∅) with
  | some b =>
    obtain ⟨hkey, hle⟩ :=
      le_of_winner? ((keys_foldl_voteIn (b := "") ∅).1 nodup_nil) hwinner
    exact ⟨hle, .inl ((hmem b).1 hkey)⟩
  | none =>
    have hkeys : ∀ c, c ∉ (net.foldl (voteIn lib) ∅).keys := by
      unfold winner? at hwinner
      split at hwinner
      · next hnil => simp [Table.keys, hnil]
      · cases hwinner
    refine ⟨fun c => ?_, .inr ⟨fun a ha hsignal => ?_, rfl⟩⟩
    · rw [get?_eq_none_iff.2 (hkeys c)]
      exact Nat.zero_le _
    · exact hkeys a.name ((hmem _).2 ⟨a, ha, hsignal, rfl⟩)

/-! ### Votes by the paths to the signals -/

/-- The weight of a signal that a path leads to: ten for the root itself, five below an interface,
and two for any other. -/
def ballot (lib : Library) (root : Address) (q : List String) : Nat :=
  if q = [] then 10
  else if (List.range q.length).any fun k => lib.made [.interface] (root.addInstances (q.take k))
    then 5 else 2

/-- What the signals at some paths give to a name. -/
def tally (lib : Library) (root : Address) (paths : List (List String)) (name : String) : Nat :=
  ((paths.filter fun q => lib.made [.signal] (root.addInstances q) &&
    (root.addInstances q).name == name).map (ballot lib root)).sum

theorem weightIn_addInstances (hr : root.IsRoot) (hq : AreNames q) (hfile : root.IsEntry ∨ q = []) :
    weightIn lib (root.addInstances q) = ballot lib root q := by
  unfold weightIn ballot
  cases q using List.reverseRecOn with
  | nil => simp [hr.parent_eq_none]
  | append_singleton q n =>
    have hentry := hfile.resolve_right (by simp)
    have hparents := hentry.parentsWithin_addInstances hq
      (Nat.lt_succ_of_le (Address.length_le_length_addInstances root (q ++ [n])))
    have hlast := areNames_append.1 hq
    have hparent := hr.parent_addInstance hlast.1 (areNames_singleton.1 hlast.2)
    rw [← Address.addInstances_concat] at hparent
    rw [Address.parents, hparents, any_reverse, any_map, hparent]
    simp [Function.comp_def]

/-- The name of a net of a root has the most votes. A signal votes by the path to it: if it is
declared on the root, it weighs five if the root is an interface and two if not, and the net takes
its name if all other names have less. -/
theorem baseName_greatest (hlib : Reached files searched lib) (hr : root.IsRoot)
    (h : (below root).outcome lib = (.ok nets, lib')) (hnet : net ∈ nets) :
    ∃ paths name, net = paths.map root.addInstances ∧ (∀ q ∈ paths, AreNames q) ∧
      (baseName net).outcome lib' = (.ok name, lib') ∧
      (∀ other, tally lib' root paths other ≤ tally lib' root paths name) ∧
      ((∃ q ∈ paths, lib'.made [.signal] (root.addInstances q) ∧
          (root.addInstances q).name = name) ∨
        (∀ q ∈ paths, ¬lib'.made [.signal] (root.addInstances q)) ∧ name = "net") ∧
      ∀ n, [n] ∈ paths → lib'.made [.signal] (root.addInstance n) →
        (∀ other, other ≠ n → tally lib' root paths other <
          if lib'.made [.interface] root then 5 else 2) → name = n := by
  have hself : root.Tree root := ⟨hr, .refl root⟩
  obtain ⟨as, has, -, -, hmem⟩ := below_eq_ok hlib hself h
  obtain ⟨hlib', hc, -, hwithin⟩ := hlib.descendants_eq_ok hr has
  have hnode : ∀ a ∈ net, a ∈ as := fun a ha => ((hmem a).1 (List.mem_flatten_of_mem hnet ha)).1
  have hpaths : ∀ a ∈ net, ∃ q, AreNames q ∧ (root.IsEntry ∨ q = []) ∧ root.addInstances q = a := by
    intro a ha
    rcases hr with hfile | hentry
    · have hmem := hlib.descendants_of_isFile hfile hself has ▸ hnode a ha
      exact ⟨[], areNames_nil, .inr rfl, (List.mem_singleton.1 hmem).symm⟩
    · obtain ⟨q, hq, rfl⟩ := within_iff_leads.1 ((hwithin a).1 (hnode a ha))
      have hsome := hc
      rw [Table.contains_eq_isSome] at hsome
      exact ⟨q, (hlib'.whole (.inr hentry) hsome q hq).1, .inl hentry, rfl⟩
  choose! path hnames hfile hpath using hpaths
  have hmap : net = (net.map path).map root.addInstances := by
    rw [List.map_map]
    exact (List.map_id net).symm.trans (List.map_congr_left fun a ha => (hpath a ha).symm)
  have htally : ∀ c, tallyIn lib' net c = tally lib' root (net.map path) c := by
    intro c
    rw [tallyIn, tally]
    nth_rewrite 1 [hmap]
    rw [List.filter_map, List.map_map, Function.comp_def]
    refine congrArg List.sum (List.map_congr_left fun q hq => ?_)
    obtain ⟨a, ha, rfl⟩ := List.mem_map.1 (List.mem_filter.1 hq).1
    exact weightIn_addInstances hr (hnames a ha) (hfile a ha)
  obtain ⟨hgreatest, hname⟩ := baseNameIn_greatest lib' net
  simp only [htally] at hgreatest
  refine ⟨net.map path, baseNameIn lib' net, hmap, ?_, ?_, hgreatest, ?_, ?_⟩
  · simpa using hnames
  · exact outcome_baseName hlib' hr hc fun a ha => (hwithin a).1 (hnode a ha)
  · rcases hname with ⟨a, ha, hsignal⟩ | ⟨hnone, hname⟩
    · exact .inl ⟨path a, List.mem_map_of_mem ha, by rwa [hpath a ha]⟩
    · refine .inr ⟨fun q hq => ?_, hname⟩
      obtain ⟨a, ha, rfl⟩ := List.mem_map.1 hq
      rw [hpath a ha]
      exact hnone a ha
  · intro n hn hsignal hless
    by_contra hne
    have hvote := hless _ hne
    have hown := Nat.lt_of_le_of_lt (hgreatest n) hvote
    have hballot : ballot lib' root [n] = if lib'.made [.interface] root then 5 else 2 := by
      simp [ballot]
    rw [← hballot] at hown
    refine absurd hown (Nat.not_lt.2 (List.le_sum_of_mem ?_))
    obtain ⟨a, ha, hpn⟩ := List.mem_map.1 hn
    have hname := Address.name_addInstance root (areNames_singleton.1 (hpn ▸ hnames a ha))
    refine List.mem_map_of_mem (List.mem_filter.2 ⟨hn, ?_⟩)
    exact Bool.and_eq_true_iff.2 ⟨hsignal, beq_iff_eq.2 hname⟩

/-- A signal of the root that is linked to two signals of one name. -/
def crowd : Library where
  files.texts := ⟨[(["f"], "module A:\n signal x\nmodule M:\n signal top\n a = new A\n" ++
    " b = new A\n top ~ a.x\n top ~ b.x\n")]⟩

theorem baseName_greatest_crowd : ∃ lib' net paths name,
    (below ⟨"f:M"⟩).outcome crowd = (.ok [net], lib') ∧
      net = paths.map (Address.addInstances ⟨"f:M"⟩) ∧
      (baseName net).outcome lib' = (.ok name, lib') ∧
      ∀ other, tally lib' ⟨"f:M"⟩ paths other ≤ tally lib' ⟨"f:M"⟩ paths name := by
  have hrun : ((below ⟨"f:M"⟩).outcome crowd).1.toOption =
      some [[⟨"f:M::top"⟩, ⟨"f:M::b.x"⟩, ⟨"f:M::a.x"⟩]] := by decide +kernel
  have h := outcome_eq_ok_of_toOption hrun
  obtain ⟨paths, name, hnet, -, hname, hgreatest, -⟩ := baseName_greatest .fresh
    (.inr ⟨['f'], ['M'], by decide⟩) h (List.mem_singleton_self _)
  exact ⟨_, _, paths, name, h, hnet, hname, hgreatest⟩

/-- The signal of the root does not outweigh the two others. -/
theorem byName_crowd : ((byName ⟨"f:M"⟩).outcome crowd).1.toOption =
    some ⟨[("x", [⟨"f:M::top"⟩, ⟨"f:M::b.x"⟩, ⟨"f:M::a.x"⟩])]⟩ := by decide +kernel

end Net

end Boardwright
