import Boardwright.Design.Definition
import Boardwright.Proofs.Report.Collection

/-!
# Imports at any depth

The imports of a file are visited line by line and block by block, and what fails at one level is
raised together to the level around it. Nothing of this can be seen in what is raised in the end:
it is as if all imports of the file stood in one list, in the order of the text, `visitEach_eq`.
-/

open List

namespace Boardwright

namespace Syntax

mutual

/-- The simple statements of a statement and of the blocks in it, in the order of the text. -/
def Stmt.simplesWithin : Stmt → List Simple
  | .line l => l.simples
  | .block _ b => Block.simplesWithin b

def Block.simplesWithin : Block → List Simple
  | .inline l => l.simples
  | .indented _ _ body _ => simplesWithin body

/-- The simple statements of a list of statements and of the blocks in them. -/
def simplesWithin : List Stmt → List Simple
  | [] => []
  | s :: ss => s.simplesWithin ++ simplesWithin ss

end

theorem Block.simplesWithin_eq (b : Block) : b.simplesWithin = Syntax.simplesWithin b.stmts := by
  cases b with
  | inline l => exact (append_nil _).symm
  | indented _ _ body _ => rfl

theorem simplesWithin_eq_flatMap (ss : List Stmt) :
    simplesWithin ss = ss.flatMap Stmt.simplesWithin := by
  induction ss with
  | nil => rfl
  | cons s ss ih => rw [simplesWithin, ih, flatMap_cons]

end Syntax

open Syntax

namespace Source

variable {src : Source}

def import? (src : Source) : Simple → Option (Except Failure (Reference × Import))
  | .importing word what _ file => some (src.imported word what file)
  | _ => none

/-- The imports of a list of statements and of the blocks in them, in the order of the text. -/
def bodyImports (src : Source) (ss : List Stmt) : List (Except Failure (Reference × Import)) :=
  (simplesWithin ss).filterMap src.import?

theorem importsOf_line (src : Source) (l : Line) :
    src.importsOf [.line l] = l.simples.filterMap src.import? := by
  have hsimples : simplesOf [.line l] = l.simples := append_nil _
  rw [importsOf, hsimples]
  rfl

theorem exists_of_import? {s : Simple} {r : Except Failure (Reference × Import)}
    (h : src.import? s = some r) :
    ∃ word what source file, s = .importing word what source file ∧
      r = src.imported word what file := by
  cases s with
  | importing word what source file =>
    cases h
    exact ⟨word, what, source, file, rfl, rfl⟩
  | _ => cases h

theorem single_filterMap_import? (src : Source) (xs : List Simple) :
    Failure.Single (xs.filterMap src.import?) := by
  intro f hf
  obtain ⟨s, -, hs⟩ := mem_filterMap.1 hf
  obtain ⟨word, what, source, file, -, hr⟩ := exists_of_import? hs
  unfold imported at hr
  split at hr
  · cases hr
    rfl
  · split at hr <;> cases hr
    rfl

theorem gather_map_gather_import? (src : Source) (ss : List Stmt) :
    (Failure.gather (ss.map fun s =>
      Failure.gather (s.simplesWithin.filterMap src.import?))).map List.flatten =
      Failure.gather (src.bodyImports ss) := by
  have hsingle : ∀ rs ∈ ss.map fun s => s.simplesWithin.filterMap src.import?,
      Failure.Single rs := by
    intro rs hrs
    obtain ⟨s, -, rfl⟩ := mem_map.1 hrs
    exact src.single_filterMap_import? _
  have hlevels := Failure.gather_map_gather hsingle
  rw [map_map] at hlevels
  rw [bodyImports, simplesWithin_eq_flatMap, List.flatMap, filterMap_flatten, map_map]
  exact hlevels

mutual

theorem visit_eq (src : Source) (s : Stmt) :
    src.visit s = Failure.gather (s.simplesWithin.filterMap src.import?) := by
  cases s with
  | line l => rw [visit, importsOf_line, Stmt.simplesWithin]
  | block h b => exact visitBlock_eq src b

theorem visitBlock_eq (src : Source) (b : Block) :
    src.visitBlock b = Failure.gather (b.simplesWithin.filterMap src.import?) := by
  cases b with
  | inline l => rw [visitBlock, importsOf_line, Block.simplesWithin]
  | indented newline indent body dedent =>
    rw [visitBlock, visitEach_eq src body, gather_map_gather_import?]
    rfl

theorem visitEach_eq (src : Source) (ss : List Stmt) :
    src.visitEach ss = ss.map fun s =>
      Failure.gather (s.simplesWithin.filterMap src.import?) := by
  cases ss with
  | nil => rfl
  | cons s ss => rw [visitEach, visit_eq src s, visitEach_eq src ss, map_cons]

end

theorem definitions_eq (src : Source) (address : Address) (f : SourceFile) :
    src.definitions address f =
      Failure.gather (src.bodyImports f.stmts) >>= fun _ => src.declared address f := by
  rw [definitions, ← gather_map_gather_import?, ← visitEach_eq]
  cases Failure.gather (src.visitEach f.stmts) <;> rfl

end Source

end Boardwright
