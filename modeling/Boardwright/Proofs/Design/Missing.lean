import Boardwright.Proofs.Design.Query
import Boardwright.Proofs.Syntax.Places

/-!
# Files that are not found

A file cannot be read if a file that it imports is in none of the places where imports are looked
for. All such imports are reported together, those of inner blocks among the others, each once and
in the order of the text, and nothing becomes known of the file: `definition_reports_absent`.

There is one thing that comes before these reports. The route of a file may read as the address of
an instance, and then no name can be added to it: an import from there is a fault, which is raised
at once.
-/

namespace Boardwright

open Syntax List

variable {f : SourceFile} {text : String}

namespace Source

variable {src : Source}

/-! ### One import -/

/-- A file that is not found: it is neither in the directory of the file that is being read nor in
a searched one. -/
def IsAbsent (src : Source) (file : String) : Prop :=
  ∀ r ∈ src.route.parent :: src.searched,
    src.files.exists? (src.files.resolve (r.joinText file)) = false

instance (src : Source) (file : String) : Decidable (src.IsAbsent file) :=
  inferInstanceAs (Decidable (∀ r ∈ src.route.parent :: src.searched, _ = false))

def absent? (src : Source) : Simple → Option (Pos × String)
  | .importing word _ _ file =>
    if src.IsAbsent file.content then some (word.pos, file.content) else none
  | _ => none

/-- The imports of statements, at any depth, whose files are not found. -/
def absent (src : Source) (ss : List Stmt) : List (Pos × String) :=
  (simplesWithin ss).filterMap src.absent?

/-- What is reported of a file that is not found. -/
def absence (src : Source) (i : Pos × String) : Failure :=
  .report (.located .importNotFound src.route.text i.1 ("File '" ++ i.2 ++ "' not found."))

/-- Whether a statement imports from a file that is found, but at a route to which the imported
name cannot be added. -/
def isUnaddressed (src : Source) : Simple → Bool
  | .importing _ what _ file =>
    (src.locate? file.content).any fun r => !((Address.mk r.text).addEntries what.names).isOk
  | _ => false

/-- What is raised if a name cannot be added. -/
def unaddressed : Failure := .fault (.value "Cannot add entry to an instance address.")

theorem locate?_eq_none_iff (hfile : src.files.isFile src.route = true) {file : String} :
    src.locate? file = none ↔ src.IsAbsent file := by
  simp [locate?, hfile, IsAbsent, find?_eq_none]

open Failure

/-- An import is raised at once if its name cannot be added, and kept to be reported if its file is
not found. -/
theorem stop?_kept_import? (hfile : src.files.isFile src.route = true) (s : Simple) :
    stop? (src.import? s).toList = (if src.isUnaddressed s then some unaddressed else none) ∧
      kept (src.import? s).toList = (src.absent? s).toList.map src.absence := by
  cases s with
  | importing word what source file =>
    by_cases habsent : src.IsAbsent file.content
    · have hnone := (locate?_eq_none_iff hfile).2 habsent
      simp only [absent?, isUnaddressed, import?, imported, if_pos habsent, hnone]
      exact ⟨rfl, rfl⟩
    · obtain ⟨r, hr⟩ := Option.ne_none_iff_exists'.1 (mt (locate?_eq_none_iff hfile).1 habsent)
      simp only [absent?, isUnaddressed, import?, imported, if_neg habsent, hr, Option.any_some]
      cases (Address.mk r.text).addEntries what.names with
      | error e =>
        cases e
        exact ⟨rfl, rfl⟩
      | ok a => exact ⟨rfl, rfl⟩
  | _ => exact ⟨rfl, rfl⟩

/-! ### All imports of a file -/

/-- A name that cannot be added ends the reading of a file. -/
theorem stop?_imports (hfile : src.files.isFile src.route = true) (xs : List Simple) :
    stop? (xs.filterMap src.import?) =
      if xs.any src.isUnaddressed then some unaddressed else none := by
  rw [filterMap_eq_flatMap_toList, List.flatMap, stop?_flatten, findSome?_map]
  induction xs with
  | nil => rfl
  | cons s xs ih =>
    rw [findSome?_cons, Function.comp_apply, (stop?_kept_import? hfile s).1, ih, any_cons]
    cases src.isUnaddressed s <;> rfl

theorem kept_imports (hfile : src.files.isFile src.route = true) (xs : List Simple) :
    kept (xs.filterMap src.import?) = (xs.filterMap src.absent?).map src.absence := by
  rw [filterMap_eq_flatMap_toList, filterMap_eq_flatMap_toList, map_flatMap,
    List.flatMap, kept_flatten, map_map, List.flatMap]
  exact congrArg List.flatten (map_congr_left fun s _ => (stop?_kept_import? hfile s).2)

theorem pairwise_absent (h : SourceFile.parse text = .ok f) :
    (src.absent f.stmts).Pairwise fun i j => i.1.Before j.1 := by
  have hpos : ∀ s, ∀ i ∈ src.absent? s, i.1 = s.start.pos := by
    intro s i hi
    cases s with
    | importing word what source file =>
      simp only [absent?] at hi
      split at hi <;> cases hi
      rfl
    | _ => cases hi
  refine (pairwise_filterMap).2 ((SourceFile.pairwise_start h).imp fun hst i hi j hj => ?_)
  rwa [hpos _ i hi, hpos _ j hj]

/-- Reports of different places differ in their details, so none is left out. -/
theorem distinct_absence (h : SourceFile.parse text = .ok f) :
    distinct ((src.absent f.stmts).map src.absence) = (src.absent f.stmts).map src.absence := by
  refine distinct_eq_self (pairwise_map.2 ((pairwise_absent h).imp ?_))
  intro i j hij he
  have hplace : i.1.line = j.1.line ∧ i.1.column = j.1.column := by
    injection he with he
    injection he with _ _ _ _ hline hcolumn
    exact ⟨Option.some.inj hline, Option.some.inj hcolumn⟩
  unfold Pos.Before at hij
  omega

/-- What becomes of a file if files that it imports are not found. -/
theorem definitions_of_absent (hfile : src.files.isFile src.route = true)
    (hf : SourceFile.parse text = .ok f) (habsent : src.absent f.stmts ≠ []) (address : Address) :
    src.definitions address f = .error (if (simplesWithin f.stmts).any src.isUnaddressed
      then unaddressed else .group "" ((src.absent f.stmts).map src.absence)) := by
  have hstop := stop?_imports hfile (simplesWithin f.stmts)
  have hkept := kept_imports hfile (simplesWithin f.stmts)
  rw [definitions_eq, bodyImports]
  split at hstop
  · next hany =>
      rw [gather_of_stop? hstop, if_pos hany]
      rfl
  · next hany =>
      have hne : kept ((simplesWithin f.stmts).filterMap src.import?) ≠ [] := by
        rw [hkept]
        exact mt map_eq_nil_iff.1 habsent
      rw [gather_of_kept hstop hne, hkept, if_neg hany, ← absent, distinct_absence hf]
      rfl

end Source

namespace Library

variable {files : Files} {searched : List Route} {lib : Library} {a : Address}

/-- A library that knows what the files say knows nothing of a file that cannot be read, and the
reading fails again. -/
theorem Settled.definition_of_read_error (hs : Settled files searched lib) {e : Failure}
    (h : read { files, searched } a.file = .error e) :
    (Library.definition a).outcome lib = (.error e, lib) := by
  have hget : lib.definitions.get? a = none := by
    refine Option.eq_none_iff_forall_ne_some.2 fun d hd => ?_
    have hdefined := hs.definitions a d hd
    rw [defined, h] at hdefined
    cases hdefined
  have hread : lib.read a.file = .error e := by
    rw [read_eq, hs.files_eq, hs.searched_eq, h]
  rw [Library.definition, Work.outcome_get_bind, hget]
  dsimp only
  rw [Work.outcome_get_bind, hread, Work.outcome_ofExcept_error_bind]

def sourceAt (files : Files) (searched : List Route) (a : Address) : Source :=
  ⟨files, searched, Route.ofText a.file⟩

theorem definition_of_absent (hlib : Reached files searched lib) {text : String} {f : SourceFile}
    (hfile : files.find? (Route.ofText a.file) = some (.file text))
    (hf : SourceFile.parse text = .ok f)
    (habsent : (sourceAt files searched a).absent f.stmts ≠ []) :
    (definition a).outcome lib =
      (.error (if (simplesWithin f.stmts).any (sourceAt files searched a).isUnaddressed
        then Source.unaddressed
        else .group "" (((sourceAt files searched a).absent f.stmts).map
          (sourceAt files searched a).absence)), lib) := by
  refine hlib.sound.settled.definition_of_read_error ?_
  have hisFile : (sourceAt files searched a).files.isFile (sourceAt files searched a).route := by
    show files.isFile (Route.ofText a.file) = true
    rw [Files.isFile, hfile]
  simp only [read, hfile, hf]
  exact Source.definitions_of_absent hisFile hf habsent ⟨a.file⟩

/-- If files that a file imports are not found, a question for any definition of this file raises
a group of reports, one for each such import, at any depth, with its place, in the order of the
places; and the library stays as it is. An import whose name cannot be added to the route where its
file is found comes before this: then it is this that is raised. -/
theorem definition_reports_absent (hlib : Reached files searched lib) {text : String}
    {f : SourceFile} (hfile : files.find? (Route.ofText a.file) = some (.file text))
    (hf : SourceFile.parse text = .ok f)
    (habsent : (sourceAt files searched a).absent f.stmts ≠ []) :
    ((sourceAt files searched a).absent f.stmts).Pairwise (fun i j => i.1.Before j.1) ∧
    ((simplesWithin f.stmts).any (sourceAt files searched a).isUnaddressed = false →
      (definition a).outcome lib =
        (.error (.group "" (((sourceAt files searched a).absent f.stmts).map fun i => .report
          (.located .importNotFound (Route.ofText a.file).text i.1
            ("File '" ++ i.2 ++ "' not found.")))), lib)) ∧
    ((simplesWithin f.stmts).any (sourceAt files searched a).isUnaddressed = true →
      (definition a).outcome lib =
        (.error (.fault (.value "Cannot add entry to an instance address.")), lib)) := by
  have houtcome := definition_of_absent hlib hfile hf habsent
  refine ⟨Source.pairwise_absent hf, fun hany => ?_, fun hany => ?_⟩
  · rw [houtcome, if_neg (by simp [hany])]
    rfl
  · rw [houtcome, if_pos hany]
    rfl

/-- Two files that are not found, one of them in two places, and one that is. -/
def scattered : String :=
  "import A from \"a\"; import B from \"g\"\n" ++
  "module M:\n  module N:\n    import C from \"c\"\n  import A from \"a\"\n"

theorem definition_reports_absent_scattered :
    let files : Files := { texts := ⟨[(["f"], scattered), (["g"], "")]⟩ }
    (definition ⟨"f:M"⟩).outcome { files } =
      (.error (.group "" [.report (.located .importNotFound "f" ⟨1, 0⟩ "File 'a' not found."),
        .report (.located .importNotFound "f" ⟨4, 4⟩ "File 'c' not found."),
        .report (.located .importNotFound "f" ⟨5, 2⟩ "File 'a' not found.")]), { files }) := by
  intro files
  have hread : (SourceFile.parse scattered).toOption.map (fun f =>
      ((sourceAt files [] ⟨"f:M"⟩).absent f.stmts,
        (simplesWithin f.stmts).any (sourceAt files [] ⟨"f:M"⟩).isUnaddressed)) =
      some ([(⟨1, 0⟩, "a"), (⟨4, 4⟩, "c"), (⟨5, 2⟩, "a")], false) := by decide +kernel
  obtain ⟨f, hf, hfound⟩ := Option.map_eq_some_iff.1 hread
  obtain ⟨habsent, hany⟩ := Prod.mk.inj hfound
  have hroute : (Route.ofText (Address.mk "f:M").file).text = "f" := by decide +kernel
  have hreports := (definition_reports_absent (a := ⟨"f:M"⟩) (@Reached.fresh files []) rfl
    (eq_ok_of_toOption hf) (by simp [habsent])).2.1 hany
  rwa [habsent, hroute] at hreports

/-- The file of the second import is found, but at a route that reads as the address of an
instance: the first import is not reported. -/
theorem definition_unaddressed :
    let text := "import A from \"a\"\nimport B from \"x:y:z:w\"\n"
    let files : Files := { texts := ⟨[(["f"], text), (["x:y:z:w"], "")]⟩ }
    ((SourceFile.parse text).toOption.map fun f => (sourceAt files [] ⟨"f"⟩).absent f.stmts) =
        some [(⟨1, 0⟩, "a")] ∧
      (definition ⟨"f"⟩).outcome { files } =
        (.error (.fault (.value "Cannot add entry to an instance address.")), { files }) := by
  intro text files
  have hread : (SourceFile.parse text).toOption.map (fun f =>
      ((sourceAt files [] ⟨"f"⟩).absent f.stmts,
        (simplesWithin f.stmts).any (sourceAt files [] ⟨"f"⟩).isUnaddressed)) =
      some ([(⟨1, 0⟩, "a")], true) := by decide +kernel
  obtain ⟨f, hf, hfound⟩ := Option.map_eq_some_iff.1 hread
  obtain ⟨habsent, hany⟩ := Prod.mk.inj hfound
  refine ⟨by rw [hf, Option.map_some, habsent], ?_⟩
  rw [definition_of_absent (a := ⟨"f"⟩) (@Reached.fresh files []) rfl
    (eq_ok_of_toOption hf) (by simp [habsent]), if_pos hany]
  rfl

end Library

end Boardwright
