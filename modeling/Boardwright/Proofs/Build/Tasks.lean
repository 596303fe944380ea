import Boardwright.Command.Build
import Boardwright.Proofs.Table
import Boardwright.Proofs.Work
import Mathlib.Data.List.TakeWhile

/-!
# What a run of builds attempts

A run of builds has tasks: each build is begun, and then each of its targets is made. Work on a
list goes on after a failure of which something can be kept, but a target that is registered shows
its failures itself and raises a fatal report instead, and of that nothing is kept. So all failures
of tasks are hard, and a run is nothing but its tasks one after the other: `runAll_registered`.

What the targets do is arbitrary here. A run is described by the targets as they were before they
were registered: it does tasks up to the first that fails, puts this failure into the log and ends
the program. The tasks after it are not attempted.
-/

open List

namespace Boardwright

variable {f : Failure}

namespace Failure

/-- A failure of which nothing is kept for later. -/
def IsHard (f : Failure) : Prop := f.isError = false ∧ f.isGroup = false

theorem sift_of_isHard (hf : f.IsHard) : f.sift isError = ([], some f) := by
  simp [sift, hf.1, hf.2]

theorem isHard_fault (f : Fault) : IsHard (.fault f) := ⟨rfl, rfl⟩

theorem isHard_fatal : IsHard (.report { kind := .fatal }) := ⟨rfl, rfl⟩

end Failure

open Failure Work

namespace Work

variable {σ α β : Type} {work : α → Work σ PUnit} {xs : List α}

theorem outcome_collecting_of_isHard (h : ∀ x ∈ xs, Raises IsHard (work x)) (kept : List Failure)
    (s : σ) :
    (collecting isError work xs kept).outcome s =
      ((fun _ => (xs.map fun _ => ⟨⟩, kept)) <$> xs.forM work).outcome s := by
  induction xs generalizing s with
  | nil => rfl
  | cons x xs ih =>
    rw [forall_mem_cons] at h
    have hcons : (x :: xs).forM work = (work x >>= fun _ => xs.forM work) := rfl
    rw [hcons, outcome_map]
    rcases hout : (work x).outcome s with ⟨f | y, t⟩
    · rw [outcome_collecting_stop hout (sift_of_isHard (h.1 s f t hout)),
        outcome_bind_error _ hout]
      rfl
    · rw [outcome_collecting_ok hout, outcome_map, ih h.2, outcome_map, outcome_bind_ok _ hout]
      rcases (xs.forM work).outcome t with ⟨f | z, t'⟩ <;> rfl

theorem each_of_isHard (h : ∀ x ∈ xs, Raises IsHard (work x)) :
    (do let _ ← each work xs : Work σ PUnit) = xs.forM work := by
  funext s
  have hcollecting := outcome_collecting_of_isHard h [] s
  rw [outcome_map] at hcollecting
  show (do let _ ← each work xs : Work σ PUnit).outcome s = (xs.forM work).outcome s
  rcases hout : (xs.forM work).outcome s with ⟨f | y, t⟩ <;> rw [hout] at hcollecting
  · have heach : (each work xs).outcome s = (.error f, t) := outcome_bind_error _ hcollecting
    rw [outcome_bind_error _ heach]
  · rw [outcome_bind, each, eachOf, outcome_bind_ok _ hcollecting]
    rfl

theorem forM_map_eq (g : β → α) (ys : List β) :
    (ys.map g).forM work = ys.forM fun y => work (g y) := by
  induction ys with
  | nil => rfl
  | cons y ys ih =>
    show (work (g y) >>= fun _ => (ys.map g).forM work) = _
    rw [ih]
    rfl

theorem forM_append_eq (xs ys : List α) :
    (xs ++ ys).forM work = (xs.forM work >>= fun _ => ys.forM work) := by
  induction xs with
  | nil => rfl
  | cons x xs ih =>
    show (work x >>= fun _ => (xs ++ ys).forM work) =
      ((work x >>= fun _ => xs.forM work) >>= fun _ => ys.forM work)
    rw [ih, bind_assoc]

theorem forM_flatMap_eq (g : β → List α) (ys : List β) :
    (ys.flatMap g).forM work = ys.forM fun y => (g y).forM work := by
  induction ys with
  | nil => rfl
  | cons y ys ih =>
    rw [flatMap_cons, forM_append_eq, ih]
    rfl

theorem outcome_handled (show_ : Failure → σ → Option Failure × σ) (w : Work σ β) (s : σ) :
    (handled show_ w).outcome s =
      match w.outcome s with
      | (.ok x, s') => (.ok x, s')
      | (.error f, s') =>
        if f.isError || f.isGroup then
          match show_ f s' with
          | (some stop, s'') => (.error stop, s'')
          | (none, s'') => (.error (.report { kind := .fatal }), s'')
        else (.error f, s') := rfl

theorem outcome_muffled (w : Work σ β) (s : σ) :
    (muffled w).outcome s =
      match w.outcome s with
      | (.ok x, s') => (.ok x, s')
      | (.error f, s') =>
        if f.isFatal then (.error (.exit 1), s')
        else if f.isGroup then
          match f.reject Failure.isFatal with
          | some rest => (.error rest, s')
          | none => (.error (.exit 1), s')
        else (.error f, s') := rfl

end Work

namespace Failure

def isReport : Failure → Bool
  | .report _ => true
  | _ => false

def isShown (f : Failure) : Bool := f.isGroup || f.isReport

def entries (verbose : Bool) : Failure → List Notice
  | .group message _ => if message.isEmpty then [] else [⟨.error, message⟩]
  | .report r =>
    ⟨.error, r.render verbose⟩ :: if verbose then [⟨.debug, "Error info:\n"⟩] else []
  | _ => []

mutual

def nodes : Failure → List Failure
  | .group message fs => .group message fs :: nodesAll fs
  | f => [f]

def nodesAll : List Failure → List Failure
  | [] => []
  | f :: fs => nodes f ++ nodesAll fs

end

mutual

theorem filter_nodes (f : Failure) : (f.nodes.filter fun g => !g.isGroup) = f.leaves := by
  cases f with
  | group message fs =>
    rw [nodes, leaves, filter_cons_of_neg (by simp [isGroup])]
    exact filter_nodesAll fs
  | report r | fault e | exit c => rfl

theorem filter_nodesAll (fs : List Failure) :
    ((nodesAll fs).filter fun g => !g.isGroup) = leavesAll fs := by
  cases fs with
  | nil => rfl
  | cons f fs =>
    rw [nodesAll, leavesAll, filter_append, filter_nodes f, filter_nodesAll fs]

end

def shownOf (verbose : Bool) (fs : List Failure) : List Notice × Option Failure :=
  ((fs.takeWhile isShown).flatMap (entries verbose),
    if fs.all isShown then none else some (.fault .missingAttribute))

theorem shownOf_cons {verbose : Bool} (hf : f.isShown = true) (fs : List Failure) :
    shownOf verbose (f :: fs) =
      (f.entries verbose ++ (shownOf verbose fs).1, (shownOf verbose fs).2) := by
  simp [shownOf, hf]

theorem shownOf_append (verbose : Bool) (fs gs : List Failure) :
    shownOf verbose (fs ++ gs) =
      if fs.all isShown then
        ((shownOf verbose fs).1 ++ (shownOf verbose gs).1, (shownOf verbose gs).2)
      else shownOf verbose fs := by
  induction fs with
  | nil => simp [shownOf]
  | cons f fs ih =>
    by_cases hf : f.isShown
    · rw [cons_append, shownOf_cons hf, shownOf_cons hf, ih, all_cons, hf,
        Bool.true_and]
      split <;> simp
    · simp [shownOf, hf]

mutual

theorem notices_eq (verbose : Bool) (f : Failure) :
    f.notices verbose = shownOf verbose f.nodes := by
  cases f with
  | group message fs =>
    rw [notices, nodes, shownOf_cons rfl, noticesAll_eq verbose fs]
    rfl
  | report r => simp [notices, leafNotices, render, nodes, shownOf, isShown, isReport, entries]
  | fault e | exit c =>
    simp [notices, leafNotices, render, nodes, shownOf, isShown, isReport, isGroup]

theorem noticesAll_eq (verbose : Bool) (fs : List Failure) :
    noticesAll verbose fs = shownOf verbose (nodesAll fs) := by
  cases fs with
  | nil => rfl
  | cons f fs =>
    rw [noticesAll, nodesAll, notices_eq verbose f, noticesAll_eq verbose fs, shownOf_append]
    by_cases hall : f.nodes.all isShown <;> simp [shownOf, hall]

end

/-- All reports of a failure are shown, or else there is something else in it and the showing ends
with a fault. -/
theorem notices_cases (verbose : Bool) (f : Failure) :
    ((f.notices verbose).2 = none ∧ ∀ g ∈ f.leaves, ∃ r, g = .report r ∧
        ⟨.error, r.render verbose⟩ ∈ (f.notices verbose).1) ∨
      ((f.notices verbose).2 = some (.fault .missingAttribute) ∧
        ∃ g ∈ f.leaves, ∀ r, g ≠ .report r) := by
  rw [notices_eq, shownOf, ← filter_nodes]
  by_cases hall : f.nodes.all isShown
  · have hself := takeWhile_eq_self_iff.2 (all_eq_true.1 hall)
    refine .inl ⟨if_pos hall, fun g hg => ?_⟩
    obtain ⟨hg, hleaf⟩ := mem_filter.1 hg
    have hshown := all_eq_true.1 hall g hg
    cases g with
    | report r => exact ⟨r, rfl, hself.symm ▸ mem_flatMap.2 ⟨_, hg, mem_cons_self⟩⟩
    | group message fs => cases hleaf
    | fault e | exit c => cases hshown
  · obtain ⟨g, hg, hnot⟩ : ∃ g ∈ f.nodes, g.isShown = false := by simpa using hall
    simp only [isShown, Bool.or_eq_false_iff] at hnot
    refine .inr ⟨if_neg hall, g, mem_filter.2 ⟨hg, by simp [hnot.1]⟩, ?_⟩
    rintro r rfl
    cases hnot.2

/-- A report that work may go on after, or a group of such reports. -/
def IsNice (f : Failure) : Prop := ∀ g ∈ f.leaves, g.isError = true

theorem IsNice.isError_or_isGroup (hf : f.IsNice) :
    (f.isError || f.isGroup) = true := by
  cases f with
  | group message fs => rfl
  | report r | fault e | exit c => simpa [leaves, isGroup] using hf _ (mem_singleton_self _)

theorem IsNice.notices (hf : f.IsNice) (verbose : Bool) :
    (f.notices verbose).2 = none ∧ ∀ r, .report r ∈ f.leaves →
      ⟨.error, r.render verbose⟩ ∈ (f.notices verbose).1 := by
  rcases notices_cases verbose f with ⟨hstop, hshown⟩ | ⟨-, g, hg, hne⟩
  · refine ⟨hstop, fun r hr => ?_⟩
    obtain ⟨r', hr', hmem⟩ := hshown _ hr
    cases hr'
    exact hmem
  · have herror := hf g hg
    cases g with
    | report r => exact absurd rfl (hne r)
    | group message fs | fault e | exit c => simp [isError] at herror

end Failure

namespace Workshop

variable {α : Type}

def shows (shop : Workshop) (f : Failure) : Workshop :=
  { shop with session.log := shop.session.log ++ (f.notices shop.session.verbose).1 }

/-- What becomes of an outcome if a failure that is a report or a group is put into the log. -/
def afterShowing : Except Failure α × Workshop → Except Failure α × Workshop
  | (.ok x, t) => (.ok x, t)
  | (.error f, t) =>
    if f.isError || f.isGroup then
      (.error ((f.notices t.session.verbose).2.getD (.report { kind := .fatal })), t.shows f)
    else (.error f, t)

theorem outcome_handled (w : Work Workshop α) (s : Workshop) :
    (handled w).outcome s = afterShowing (w.outcome s) := by
  rw [handled, Work.outcome_handled]
  rcases w.outcome s with ⟨f | x, t⟩
  · dsimp only [afterShowing]
    split
    · rcases hshown : f.notices t.session.verbose with ⟨more, _ | stop⟩ <;> simp [shows, hshown]
    · rfl
  · rfl

theorem afterShowing_of_isHard (hf : f.IsHard) (t : Workshop) :
    afterShowing (.error f, t) = ((.error f, t) : Except Failure α × Workshop) := by
  simp [afterShowing, hf.1, hf.2]

theorem afterShowing_of_isNice (hf : f.IsNice) (t : Workshop) :
    afterShowing (.error f, t) =
      ((.error (.report { kind := .fatal }), t.shows f) : Except Failure α × Workshop) := by
  rw [afterShowing, if_pos hf.isError_or_isGroup, (hf.notices _).1]
  rfl

theorem exists_afterShowing (f : Failure) (t : Workshop) :
    ∃ e u, afterShowing (.error f, t) = ((.error e, u) : Except Failure α × Workshop) := by
  rw [afterShowing]
  split
  · exact ⟨_, _, rfl⟩
  · exact ⟨_, _, rfl⟩

/-- Whatever is raised then is hard. -/
theorem isHard_of_afterShowing {o : Except Failure α × Workshop} {e : Failure} {t : Workshop}
    (h : afterShowing o = (.error e, t)) : e.IsHard := by
  rcases o with ⟨f | x, t'⟩
  · rw [afterShowing] at h
    split at h
    · cases h
      rcases notices_cases t'.session.verbose f with ⟨hstop, -⟩ | ⟨hstop, -⟩ <;> rw [hstop]
      · exact isHard_fatal
      · exact isHard_fault _
    · next hnot =>
        cases h
        simpa [IsHard] using hnot
  · cases h

end Workshop

namespace Roster

variable {κ σ α : Type}

def registered (handled : Work σ α → Work σ α) (r : Roster κ σ α) : Roster κ σ α :=
  { r with targets := r.targets.map fun target k => handled (target k) }

variable (handled : Work σ α → Work σ α) (r : Roster κ σ α)

theorem requested_registered (names : List String) :
    (r.registered handled).requested names = r.requested names := by
  simp [requested, registered, Table.keys, Table.map, Function.comp_def]

theorem get?_registered (name : String) :
    (r.registered handled).targets.get? name =
      (r.targets.get? name).map fun target k => handled (target k) :=
  Table.get?_map _ _ _

/-- To register a target is to add it to what is registered, so any roster that is made by
registering targets is of this sort. -/
theorem register_registered (label : String) (name : Option String) (isDefault : Bool)
    (target : κ → Work σ α) :
    (r.registered handled).register handled label name isDefault target =
      (r.add label name isDefault target).registered handled := by
  simp only [register, add, registered, Table.map_set]

theorem make_registered (name : String) (k : κ) :
    (r.registered handled).make name k = match r.targets.get? name with
      | some target => handled (target k)
      | none => throw (.fault .missingKey) := by
  rw [make, get?_registered]
  cases r.targets.get? name <;> rfl

end Roster

namespace Build

/-- What is done in a run of builds: a build is begun, or a target of it is made. -/
inductive Task
  | start (b : Build)
  | make (b : Build) (name : String)

def Task.work (r : Roster Build Workshop Unit) : Task → Work Workshop Unit
  | .start b => do
    Workshop.note .info ("Building " ++ b.name)
    modify fun shop => { shop with session.library.searched := b.searched }
    Workshop.note .info ("Writing outputs to " ++ b.output.text)
    Workshop.makeDirs b.output
  | .make b name => makeTarget r b name

/-- All that a run of builds is asked for, in order. -/
def tasks (r : Roster Build Workshop Unit) (bs : List Build) : List Task :=
  bs.flatMap fun b => .start b :: (r.requested b.targets).map (.make b)

/-- If all failures are hard, a run of builds does its tasks one after the other up to the first
that fails. -/
theorem runAll_of_isHard {r : Roster Build Workshop Unit}
    (hr : ∀ t, Raises IsHard (Task.work r t)) (bs : List Build) :
    runAll r bs = (tasks r bs).forM (Task.work r) := by
  have hrun (b : Build) : (do Workshop.note .info ("Building " ++ b.name); run r b) =
      (Task.start b :: (r.requested b.targets).map (.make b)).forM (Task.work r) := by
    have htargets :
        (do let _ ← each (makeTarget r b) (r.requested b.targets) : Work Workshop Unit) =
          ((r.requested b.targets).map (.make b)).forM (Task.work r) := by
      rw [forM_map_eq]
      exact each_of_isHard fun name _ => hr (.make b name)
    show _ = (Task.work r (.start b) >>= fun _ => _)
    rw [← htargets, Task.work]
    simp only [run, bind_assoc]
  rw [tasks, forM_flatMap_eq, ← each_of_isHard]
  · simp only [← hrun]
    rfl
  · exact fun b _ => .forM fun t _ => hr t

variable (r : Roster Build Workshop Unit)

theorem raises_note {E : Failure → Prop} (severity : Severity) (message : String) :
    Raises E (Workshop.note severity message) := fun _ _ _ h => nomatch h

/-- A build cannot begin only if its directory cannot be made. -/
theorem raises_start (b : Build) :
    Raises (fun f => ∃ e, f = .fault e) (Task.work r (.start b)) := by
  have hmake : Raises (fun f => ∃ e, f = .fault e) (Workshop.makeDirs b.output) := by
    refine Raises.bind (.bind .get fun _ => .pure _) fun fs => Raises.bind ?_ fun _ => .modify _
    cases fs.makeDirs b.output with
    | ok fs' => exact .pure fs'
    | error e => exact .throw ⟨e, rfl⟩
  exact Raises.bind (raises_note _ _) fun _ => Raises.bind (.modify _) fun _ =>
    Raises.bind (raises_note _ _) fun _ => hmake

theorem outcome_make (b : Build) (name : String) (s : Workshop) :
    (Task.work r (.make b name)).outcome s =
      (r.make name b).outcome ((Workshop.note .info ("Building " ++ name)).outcome s).2 := rfl

theorem outcome_registered (t : Task) (s : Workshop) :
    (t.work (r.registered Workshop.handled)).outcome s =
      Workshop.afterShowing ((t.work r).outcome s) := by
  cases t with
  | start b =>
    show (Task.work r (.start b)).outcome s = _
    rcases hout : (Task.work r (.start b)).outcome s with ⟨f | x, t⟩
    · obtain ⟨e, rfl⟩ := raises_start r b s f t hout
      rfl
    · rfl
  | make b name =>
    rw [outcome_make, outcome_make, Roster.make_registered, Roster.make]
    cases r.targets.get? name with
    | none => rfl
    | some target => exact Workshop.outcome_handled _ _

theorem runAll_registered (bs : List Build) :
    runAll (r.registered Workshop.handled) bs =
      (tasks r bs).forM (Task.work (r.registered Workshop.handled)) := by
  have hhard (t : Task) : Raises IsHard (t.work (r.registered Workshop.handled)) := by
    intro s e u h
    rw [outcome_registered] at h
    exact Workshop.isHard_of_afterShowing h
  rw [runAll_of_isHard hhard, tasks, tasks]
  simp only [Roster.requested_registered]

theorem outcome_forM_registered (ts : List Task) (s : Workshop) :
    ∃ made rest t, ts = made ++ rest ∧ (made.forM (Task.work r)).outcome s = (.ok (), t) ∧
      match rest with
      | [] => (ts.forM (Task.work (r.registered Workshop.handled))).outcome s = (.ok (), t)
      | x :: _ => ∃ f t', (x.work r).outcome t = (.error f, t') ∧
          (ts.forM (Task.work (r.registered Workshop.handled))).outcome s =
            Workshop.afterShowing (.error f, t') := by
  induction ts generalizing s with
  | nil => exact ⟨[], [], s, rfl, rfl, rfl⟩
  | cons x ts ih =>
    have hx := outcome_registered r x s
    rcases hout : (x.work r).outcome s with ⟨f | y, t⟩ <;> rw [hout] at hx
    · obtain ⟨e, u, he⟩ := Workshop.exists_afterShowing (α := Unit) f t
      refine ⟨[], x :: ts, s, rfl, rfl, f, t, hout, ?_⟩
      exact (outcome_bind_error _ (hx.trans he)).trans he.symm
    · obtain ⟨made, rest, u, rfl, hmade, hrest⟩ := ih t
      refine ⟨x :: made, rest, u, rfl, forM_cons_ok.2 ⟨t, hout, hmade⟩, ?_⟩
      have hcons :
          ((x :: (made ++ rest)).forM (Task.work (r.registered Workshop.handled))).outcome s =
            ((made ++ rest).forM (Task.work (r.registered Workshop.handled))).outcome t :=
        outcome_bind_ok _ hx
      cases rest with
      | nil => exact hcons.trans hrest
      | cons y rest =>
        obtain ⟨f, t', hf, hrest⟩ := hrest
        exact ⟨f, t', hf, hcons.trans hrest⟩

/-- The targets of a design, as they are before they are registered. -/
def makers : Roster Build Workshop Unit where
  targets := ⟨[("copy-footprints", gatherFootprints), ("netlist", writeNetlist),
    ("bom", writeBill), ("designator-map", showDesignators), ("mfg-data", manufacture)]⟩
  byDefault := ["copy-footprints", "netlist", "bom", "designator-map"]

theorem roster_eq : roster = makers.registered Workshop.handled := rfl

/-- Builds are run with targets that show their failures, and the program ends after a fatal
one. -/
def attempt (bs : List Build) : Work Workshop Unit :=
  muffled (runAll (r.registered Workshop.handled) bs)

theorem outcome_command {q : Command.BuildRequest} {bs : List Build} {s t : Workshop}
    (h : (Command.buildsOf q).outcome s = (.ok bs, t)) :
    (Command.build q).outcome s = (attempt makers bs).outcome t := by
  rw [Command.build, outcome_muffled, outcome_bind_ok _ h, roster_eq, attempt, outcome_muffled]

/-- A run does its tasks in order, each once, up to the first that fails. If none fails, it leaves
the workshop as the tasks left it. If one fails with a report or with a group of reports, they are
put into the log and the program ends with the code 1; a fault is raised as it is. The command
that builds is such a run of its own targets. -/
theorem attempt_stops_at_failure (bs : List Build) (s : Workshop) :
    (∃ made rest t, tasks r bs = made ++ rest ∧
      (made.forM (Task.work r)).outcome s = (.ok (), t) ∧
      match rest with
      | [] => (attempt r bs).outcome s = (.ok (), t)
      | x :: _ => ∃ f t', (x.work r).outcome t = (.error f, t') ∧
          (f.IsNice → (attempt r bs).outcome s = (.error (.exit 1), t'.shows f) ∧
            ∀ rep, .report rep ∈ f.leaves →
              ⟨.error, rep.render t'.session.verbose⟩ ∈ (t'.shows f).session.log) ∧
          ∀ e, f = .fault e → (attempt r bs).outcome s = (.error (.fault e), t')) ∧
    ∀ q u, (Command.buildsOf q).outcome u = (.ok bs, s) →
      (Command.build q).outcome u = (attempt makers bs).outcome s := by
  refine ⟨?_, fun q u h => outcome_command h⟩
  obtain ⟨made, rest, t, hcut, hmade, hrest⟩ := outcome_forM_registered r (tasks r bs) s
  refine ⟨made, rest, t, hcut, hmade, ?_⟩
  rw [attempt, outcome_muffled, runAll_registered]
  cases rest with
  | nil => rw [hrest]
  | cons x rest =>
    obtain ⟨f, t', hf, hout⟩ := hrest
    refine ⟨f, t', hf, fun hnice => ⟨?_, ?_⟩, ?_⟩
    · rw [hout, Workshop.afterShowing_of_isNice hnice]
      rfl
    · exact fun rep hrep => List.mem_append_right _ ((hnice.notices _).2 rep hrep)
    · rintro e rfl
      rw [hout, Workshop.afterShowing_of_isHard (isHard_fault e)]
      rfl

/-- The first target always fails, and the second one opens a page. -/
def failingFirst : Roster Build Workshop Unit :=
  (({} : Roster Build Workshop Unit).add "first" none true
    fun _ => throw (.general "first failed")).add "second" none true
    fun _ => Workshop.call (.browse "second")

def plainBuild : Build where
  name := "default"
  entry := ⟨"a.ato:A"⟩
  targets := ["__default__"]
  layout := .ofParts ["layout"]
  root := .ofParts []
  source := .ofParts ["src"]
  modules := .ofParts ["modules"]
  output := .ofParts ["build"]

/-- The second target is asked for and is not attempted. -/
theorem attempt_failingFirst :
    tasks failingFirst [plainBuild] =
      [.start plainBuild, .make plainBuild "first", .make plainBuild "second"] ∧
    ((attempt failingFirst [plainBuild]).outcome {}).1 = .error (.exit 1) ∧
    ((attempt failingFirst [plainBuild]).outcome {}).2.calls = [] ∧
    (((Task.make plainBuild "second").work failingFirst).outcome {}).2.calls =
      [.browse "second"] :=
  ⟨rfl, rfl, rfl, rfl⟩

end Build

end Boardwright
